/-
  Rounding to doubles.

  A finite double is `mantissa * 2 ^ scale`, and its pattern without the sign is
  `(scale + 1074) * 2 ^ 52 + mantissa`, whether its mantissa is normal or not (`magnitude_eq`). The
  rationals between the ends of its interval (`Covers`) are those that `nearest` rounds to it, ties
  and the narrower side below a power of two included (`nearest_eq_iff`).
-/
import BlockScript.Number.Shortest
import Mathlib.Algebra.Order.Field.Power
import Mathlib.Data.Rat.Cast.Order
import Mathlib.Tactic.FieldSimp
import Mathlib.Tactic.Linarith
import Mathlib.Tactic.NormNum
import Mathlib.Tactic.Positivity
import Mathlib.Tactic.Ring

namespace BlockScript.Double

/-! ## The fields of a pattern -/

/-- Whether a double is a number and not infinite. -/
def IsFinite (d : Double) : Prop := d.isNaN = false ∧ d.isInfinite = false

theorem pow_52 : Nat.pow 2 52 = 4503599627370496 := rfl

theorem magnitude_lt (d : Double) : d.magnitude < 9223372036854775808 :=
  Nat.mod_lt _ (by decide)

theorem IsFinite.exponentField_lt {d : Double} (h : d.IsFinite) : d.exponentField < 2047 := by
  have hle : d.exponentField ≤ 2047 := by
    have := d.magnitude_lt
    unfold exponentField
    rw [pow_52]
    omega
  have hne : d.exponentField ≠ 2047 := by
    intro heq
    obtain ⟨hnan, hinf⟩ := h
    simp [isNaN, isInfinite, heq] at hnan hinf
    exact hinf hnan
  omega

theorem scale_ge (d : Double) : -1074 ≤ d.scale := by
  unfold scale
  split <;> omega

theorem IsFinite.scale_le {d : Double} (h : d.IsFinite) : d.scale ≤ 971 := by
  have := h.exponentField_lt
  unfold scale
  split <;> omega

theorem mantissa_lt (d : Double) : d.mantissa < 2 ^ 53 := by
  have hf : d.fractionField < 4503599627370496 := Nat.mod_lt _ (by decide)
  unfold mantissa
  rw [pow_52]
  split <;> omega

/-- Above the least scale mantissas are normal. -/
theorem mantissa_ge {d : Double} (h : -1074 < d.scale) : 2 ^ 52 ≤ d.mantissa := by
  unfold scale at h
  unfold mantissa
  rw [pow_52]
  split at h
  · omega
  · rw [if_neg ‹_›]
    omega

/-- A pattern without its sign counts the units of the mantissa from zero on. -/
theorem magnitude_eq (d : Double) : (d.magnitude : ℤ) = (d.scale + 1074) * 2 ^ 52 + d.mantissa := by
  have hsplit : d.magnitude = 4503599627370496 * d.exponentField + d.fractionField :=
    (Nat.div_add_mod _ _).symm
  unfold scale mantissa
  rw [pow_52]
  split
  · rename_i hzero
    rw [hzero] at hsplit
    omega
  · omega

theorem mantissa_pos {d : Double} (h : d.isZero = false) : 0 < d.mantissa := by
  have hne : d.magnitude ≠ 0 := by simpa [isZero] using h
  have hmag := d.magnitude_eq
  have hge := d.scale_ge
  by_contra hzero
  have hscale : -1074 < d.scale := by omega
  have := mantissa_ge hscale
  omega

theorem IsFinite.magnitude_lt {d : Double} (h : d.IsFinite) : d.magnitude < infinityPattern := by
  have := d.magnitude_eq
  have := d.mantissa_lt
  have := h.scale_le
  have hpattern : infinityPattern = 9218868437227405312 := rfl
  omega

theorem narrowBelow_iff {d : Double} :
    d.narrowBelow = true ↔ d.mantissa = 2 ^ 52 ∧ -1074 < d.scale := by
  unfold narrowBelow scale
  rw [Bool.and_eq_true, beq_iff_eq, decide_eq_true_eq]
  have : Nat.pow 2 52 = 2 ^ 52 := rfl
  rw [this]
  split <;> omega

/-! ## Rounding to integers -/

/-- Whether an integer is the one that a rational rounds to, a half going to the even neighbour. -/
def IsRounded (q : ℚ) (r : ℕ) : Prop :=
  if r % 2 = 0 then (r : ℚ) - 1 / 2 ≤ q ∧ q ≤ r + 1 / 2 else (r : ℚ) - 1 / 2 < q ∧ q < r + 1 / 2

theorem IsRounded.le {q : ℚ} {r : ℕ} (h : IsRounded q r) : (r : ℚ) - 1 / 2 ≤ q ∧ q ≤ r + 1 / 2 := by
  unfold IsRounded at h
  split at h
  · exact h
  · exact ⟨h.1.le, h.2.le⟩

theorem isRounded_of_lt {q : ℚ} {r : ℕ} (hl : (r : ℚ) - 1 / 2 < q) (hu : q < r + 1 / 2) :
    IsRounded q r := by
  unfold IsRounded
  split
  · exact ⟨hl.le, hu.le⟩
  · exact ⟨hl, hu⟩

/-- Half way between two integers only the even one is rounded to. -/
theorem IsRounded.unique {q : ℚ} {r r' : ℕ} (h : IsRounded q r) (h' : IsRounded q r') :
    r = r' := by
  wlog hlt : r < r' generalizing r r'
  · rcases Nat.lt_trichotomy r r' with h1 | h1 | h1
    · exact absurd h1 hlt
    · exact h1
    · exact (this h' h h1).symm
  exfalso
  have hcast : (r : ℚ) + 1 ≤ r' := by exact_mod_cast hlt
  have hmid : (r : ℚ) + 1 = r' := by linarith [h.le.2, h'.le.1]
  have hnext : r + 1 = r' := by exact_mod_cast hmid
  have hq : q = r + 1 / 2 := by linarith [h.le.2, h'.le.1]
  unfold IsRounded at h h'
  rw [← hnext, hq] at h'
  rw [hq] at h
  push_cast at h'
  split at h
  · split at h'
    · omega
    · linarith [h'.1]
  · linarith [h.2]

theorem isRounded_roundQuotient (num : ℕ) {den : ℕ} (hd : 0 < den) :
    IsRounded ((num : ℚ) / den) (roundQuotient num den) := by
  have hdq : (0 : ℚ) < den := by exact_mod_cast hd
  have hnum : (num : ℚ) = den * (num / den : ℕ) + (num % den : ℕ) := by
    exact_mod_cast (Nat.div_add_mod num den).symm
  -- The quotient and the rest, as a fraction of the divisor.
  obtain ⟨part, hpart⟩ : ∃ part : ℚ, part = ((num % den : ℕ) : ℚ) / den := ⟨_, rfl⟩
  have hq : (num : ℚ) / den = (num / den : ℕ) + part := by
    rw [hpart, hnum]
    field_simp
  have hnonneg : 0 ≤ part := by
    rw [hpart]
    positivity
  have hsmall : part < 1 := by
    rw [hpart, div_lt_one hdq]
    exact_mod_cast Nat.mod_lt num hd
  rw [hq]
  unfold roundQuotient
  dsimp only
  split
  · rename_i hlow
    have hhalf : part < 1 / 2 := by
      rw [hpart, div_lt_div_iff₀ hdq two_pos]
      exact_mod_cast (by omega : num % den * 2 < 1 * den)
    exact isRounded_of_lt (by linarith) (by linarith)
  · split
    · rename_i hhigh
      have hhalf : 1 / 2 < part := by
        rw [hpart, div_lt_div_iff₀ two_pos hdq]
        exact_mod_cast (by omega : 1 * den < num % den * 2)
      apply isRounded_of_lt
      · push_cast
        linarith
      · push_cast
        linarith
    · have hhalf : part = 1 / 2 := by
        rw [hpart, div_eq_div_iff hdq.ne' two_ne_zero]
        exact_mod_cast (by omega : num % den * 2 = 1 * den)
      have heven : (num / den + num / den % 2) % 2 = 0 := by omega
      have hodd : ((num / den % 2 : ℕ) : ℚ) = 0 ∨ ((num / den % 2 : ℕ) : ℚ) = 1 := by
        rcases Nat.mod_two_eq_zero_or_one (num / den) with h | h
        · exact .inl (by rw [h]; norm_num)
        · exact .inr (by rw [h]; norm_num)
      unfold IsRounded
      rw [if_pos heven, Nat.cast_add, hhalf]
      rcases hodd with h | h
      · rw [h]
        constructor <;> linarith
      · rw [h]
        constructor <;> linarith

/-! ## Powers of two and ten -/

/-- A power with an integer exponent as a quotient of powers with natural ones. -/
theorem zpow_eq_div (b : ℚ) (n : ℤ) : b ^ n = b ^ n.toNat / b ^ (-n).toNat := by
  rcases le_total 0 n with h | h
  · have hz : (-n).toNat = 0 := by omega
    rw [hz, pow_zero, div_one, ← zpow_natCast, Int.toNat_of_nonneg h]
  · have hz : n.toNat = 0 := by omega
    rw [hz, pow_zero, one_div, ← zpow_natCast, Int.toNat_of_nonneg (by omega), zpow_neg, inv_inv]

theorem cast_pow (b n : ℕ) : ((Nat.pow b n : ℕ) : ℚ) = (b : ℚ) ^ n := Nat.cast_pow b n

/-- The base-two logarithm of a positive quotient, rounded down. -/
theorem floorLog2_spec {num den : ℕ} (hn : 0 < num) (hd : 0 < den) :
    (2 : ℚ) ^ floorLog2 num den ≤ (num : ℚ) / den ∧
      (num : ℚ) / den < (2 : ℚ) ^ (floorLog2 num den + 1) := by
  have hdq : (0 : ℚ) < den := by exact_mod_cast hd
  have hnum : (2 : ℚ) ^ (num.log2 : ℤ) ≤ num ∧ (num : ℚ) < 2 ^ (num.log2 + 1 : ℤ) := by
    constructor
    · exact_mod_cast Nat.log2_self_le hn.ne'
    · exact_mod_cast Nat.lt_log2_self
  have hden : (2 : ℚ) ^ (den.log2 : ℤ) ≤ den ∧ (den : ℚ) < 2 ^ (den.log2 + 1 : ℤ) := by
    constructor
    · exact_mod_cast Nat.log2_self_le hd.ne'
    · exact_mod_cast Nat.lt_log2_self
  obtain ⟨guess, hguess⟩ : ∃ guess : ℤ, guess = (num.log2 : ℤ) - den.log2 := ⟨_, rfl⟩
  have htest : den * Nat.pow 2 guess.toNat ≤ num * Nat.pow 2 (-guess).toNat ↔
      (2 : ℚ) ^ guess ≤ (num : ℚ) / den := by
    rw [zpow_eq_div, div_le_div_iff₀ (by positivity) hdq, ← Nat.cast_le (α := ℚ)]
    push_cast [cast_pow]
    rw [mul_comm (den : ℚ)]
  have hlow : (2 : ℚ) ^ (guess - 1) ≤ (num : ℚ) / den := by
    rw [le_div_iff₀ hdq]
    calc (2 : ℚ) ^ (guess - 1) * den ≤ 2 ^ (guess - 1) * 2 ^ (den.log2 + 1 : ℤ) := by
          gcongr
          exact hden.2.le
      _ = 2 ^ (num.log2 : ℤ) := by
          rw [← zpow_add₀ two_ne_zero]
          congr 1
          omega
      _ ≤ num := hnum.1
  have hhigh : (num : ℚ) / den < 2 ^ (guess + 1) := by
    rw [div_lt_iff₀ hdq]
    calc (num : ℚ) < 2 ^ (num.log2 + 1 : ℤ) := hnum.2
      _ = 2 ^ (guess + 1) * 2 ^ (den.log2 : ℤ) := by
          rw [← zpow_add₀ two_ne_zero]
          congr 1
          omega
      _ ≤ 2 ^ (guess + 1) * den := by
          gcongr
          exact hden.1
  unfold floorLog2
  dsimp only
  rw [← hguess]
  split
  · rename_i h
    exact ⟨htest.mp h, hhigh⟩
  · rename_i h
    refine ⟨hlow, ?_⟩
    rw [sub_add_cancel]
    exact not_le.mp fun hle => h (htest.mpr hle)

/-! ## The nearest double -/

/-- Whether `2 ^ u` is the unit of the mantissa of doubles near `x`. -/
structure UnitNear (x : ℚ) (u : ℤ) : Prop where
  least : -1074 ≤ u
  small : x / 2 ^ u < 2 ^ 53
  normal : -1074 < u → 2 ^ 52 ≤ x / 2 ^ u

theorem UnitNear.unique {x : ℚ} {u v : ℤ} (hu : UnitNear x u) (hv : UnitNear x v) : u = v := by
  wlog hlt : u < v generalizing u v
  · rcases lt_trichotomy u v with h | h | h
    · exact absurd h hlt
    · exact h
    · exact (this hv hu h).symm
  exfalso
  have hlow := hv.normal (lt_of_le_of_lt hu.least hlt)
  have hhigh := hu.small
  rw [le_div_iff₀ (by positivity)] at hlow
  rw [div_lt_iff₀ (by positivity)] at hhigh
  have hstep : (2 : ℚ) ^ (u + 1) ≤ 2 ^ v := zpow_le_zpow_right₀ (by norm_num) (by omega)
  rw [zpow_add_one₀ two_ne_zero] at hstep
  linarith

/-- A positive quotient is rounded to an integer number of units. -/
theorem nearest_spec {num den : ℕ} (hn : 0 < num) (hd : 0 < den) : ∃ (u : ℤ) (r : ℕ),
    UnitNear ((num : ℚ) / den) u ∧ IsRounded ((num : ℚ) / den / 2 ^ u) r ∧
      (nearest num den).bits.toNat = min ((u + 1074).toNat * 2 ^ 52 + r) infinityPattern := by
  obtain ⟨hlow, hhigh⟩ := floorLog2_spec hn hd
  obtain ⟨u, hu⟩ : ∃ u : ℤ, u = max (floorLog2 num den - 52) (-1074) := ⟨_, rfl⟩
  obtain ⟨r, hr⟩ : ∃ r, r = roundQuotient (num * Nat.pow 2 (-u).toNat) (den * Nat.pow 2 u.toNat) :=
    ⟨_, rfl⟩
  refine ⟨u, r, ⟨by omega, ?_, fun hnormal => ?_⟩, ?_, ?_⟩
  · rw [div_lt_iff₀ (by positivity)]
    calc (num : ℚ) / den < 2 ^ (floorLog2 num den + 1) := hhigh
      _ ≤ 2 ^ (53 + u) := zpow_le_zpow_right₀ (by norm_num) (by omega)
      _ = 2 ^ 53 * 2 ^ u := zpow_add₀ two_ne_zero _ _
  · rw [le_div_iff₀ (by positivity)]
    calc (2 : ℚ) ^ 52 * 2 ^ u = 2 ^ (52 + u) := (zpow_add₀ two_ne_zero _ _).symm
      _ = 2 ^ floorLog2 num den := by congr 1; omega
      _ ≤ (num : ℚ) / den := hlow
  · have hden : 0 < den * Nat.pow 2 u.toNat := Nat.mul_pos hd (Nat.pow_pos (by decide))
    have hquotient : (num : ℚ) / den / 2 ^ u =
        ((num * Nat.pow 2 (-u).toNat : ℕ) : ℚ) / ((den * Nat.pow 2 u.toNat : ℕ) : ℚ) := by
      rw [zpow_eq_div]
      push_cast [cast_pow]
      field_simp
    rw [hquotient, hr]
    exact isRounded_roundQuotient _ hden
  · unfold nearest
    rw [if_neg (by omega)]
    dsimp only
    rw [← hu, ← hr, UInt64.toNat_ofNat']
    apply Nat.mod_eq_of_lt
    have : infinityPattern = 9218868437227405312 := rfl
    have : UInt64.size = 18446744073709551616 := rfl
    omega

/-! ## The interval of a double -/

/-- The double without its sign. -/
def size (d : Double) : ℚ := d.mantissa * 2 ^ d.scale

/-- Whether a rational lies in the interval of a double, with the ends where they belong to it. -/
def Covers (d : Double) (x : ℚ) : Prop :=
  if d.closed then d.lower * (2 : ℚ) ^ (d.scale - 2) ≤ x ∧ x ≤ d.upper * (2 : ℚ) ^ (d.scale - 2)
  else d.lower * (2 : ℚ) ^ (d.scale - 2) < x ∧ x < d.upper * (2 : ℚ) ^ (d.scale - 2)

section

variable {d : Double} {x : ℚ}

theorem Covers.le (h : d.Covers x) :
    d.lower * (2 : ℚ) ^ (d.scale - 2) ≤ x ∧ x ≤ d.upper * (2 : ℚ) ^ (d.scale - 2) := by
  unfold Covers at h
  split at h
  · exact h
  · exact ⟨h.1.le, h.2.le⟩

/-- The interval has no gaps. -/
theorem Covers.between {y z : ℚ} (hx : d.Covers x) (hz : d.Covers z) (hxy : x ≤ y) (hyz : y ≤ z) :
    d.Covers y := by
  unfold Covers at hx hz ⊢
  split at hx
  · rw [if_pos ‹_›] at hz ⊢
    exact ⟨hx.1.trans hxy, hyz.trans hz.2⟩
  · rw [if_neg ‹_›] at hz ⊢
    exact ⟨hx.1.trans_le hxy, hyz.trans_lt hz.2⟩

theorem quarter (d : Double) : (2 : ℚ) ^ (d.scale - 2) = 2 ^ d.scale / 4 := by
  rw [zpow_sub₀ two_ne_zero]
  norm_num

theorem upper_eq (d : Double) :
    d.upper * (2 : ℚ) ^ (d.scale - 2) = (d.mantissa + 1 / 2) * 2 ^ d.scale := by
  unfold upper center
  rw [quarter]
  push_cast
  ring

theorem lower_eq (hz : d.isZero = false) : d.lower * (2 : ℚ) ^ (d.scale - 2) =
    (d.mantissa - (if d.narrowBelow then 1 / 4 else 1 / 2)) * 2 ^ d.scale := by
  have hpos := mantissa_pos hz
  unfold lower center
  rw [quarter]
  split
  · rw [Nat.cast_sub (by omega)]
    push_cast
    ring
  · rw [Nat.cast_sub (by omega)]
    push_cast
    ring

theorem closed_iff : d.closed = true ↔ d.mantissa % 2 = 0 := by
  unfold closed
  exact beq_iff_eq

/-- Where doubles lie equally far apart on both sides, the interval is that of rounding to the
    nearest mantissa. -/
theorem covers_iff_of_wide (hz : d.isZero = false) (hw : d.narrowBelow = false) :
    d.Covers x ↔ IsRounded (x / 2 ^ d.scale) d.mantissa := by
  have hpos : (0 : ℚ) < 2 ^ d.scale := by positivity
  unfold Covers IsRounded
  rw [upper_eq, lower_eq hz, hw]
  simp only [closed_iff, Bool.false_eq_true, if_false, le_div_iff₀ hpos, div_le_iff₀ hpos,
    lt_div_iff₀ hpos, div_lt_iff₀ hpos]

/-- Above a power of two the lower half of the interval is half as long. -/
theorem covers_iff_of_narrow (hz : d.isZero = false) (hw : d.narrowBelow = true) :
    d.Covers x ↔ (2 : ℚ) ^ 52 - 1 / 4 ≤ x / 2 ^ d.scale ∧ x / 2 ^ d.scale ≤ 2 ^ 52 + 1 / 2 := by
  have hpos : (0 : ℚ) < 2 ^ d.scale := by positivity
  obtain ⟨hm, -⟩ := narrowBelow_iff.mp hw
  have hclosed : d.closed = true := closed_iff.mpr (by rw [hm]; rfl)
  unfold Covers
  rw [if_pos hclosed, upper_eq, lower_eq hz, hw, if_pos rfl, hm, le_div_iff₀ hpos, div_le_iff₀ hpos]
  push_cast
  rfl

theorem div_half_unit (x : ℚ) (s : ℤ) : x / 2 ^ (s - 1) = 2 * (x / 2 ^ s) := by
  rw [zpow_sub_one₀ two_ne_zero]
  field_simp

/-- How a rational is rounded to a double: to its mantissa in its own unit or, just below a power of
    two, up to that power in the unit below. -/
inductive RoundsTo (d : Double) (x : ℚ) (u : ℤ) (r : ℕ) : Prop
  | own (hu : u = d.scale) (hr : r = d.mantissa)
  | carried (hu : u = d.scale - 1) (hr : r = 2 ^ 53) (hm : d.mantissa = 2 ^ 52)

theorem RoundsTo.covers (hz : d.isZero = false) {u : ℤ} {r : ℕ} (h : d.RoundsTo x u r)
    (hunit : UnitNear x u) (hround : IsRounded (x / 2 ^ u) r) : d.Covers x := by
  have hleast := hunit.least
  cases h with
  | own hu hr =>
    subst hu hr
    cases hw : d.narrowBelow with
    | false => exact (covers_iff_of_wide hz hw).mpr hround
    | true =>
      obtain ⟨hm, hs⟩ := narrowBelow_iff.mp hw
      have hlow := hunit.normal hs
      have hhigh := hround.le.2
      rw [hm] at hhigh
      push_cast at hhigh
      exact (covers_iff_of_narrow hz hw).mpr ⟨by linarith, hhigh⟩
  | carried hu hr hm =>
    subst hu hr
    have hlow := hround.le.1
    have hhigh := hunit.small
    rw [div_half_unit] at hlow hhigh
    push_cast at hlow
    refine (covers_iff_of_narrow hz (narrowBelow_iff.mpr ⟨hm, by omega⟩)).mpr ⟨?_, ?_⟩
    · linarith
    · linarith

theorem exists_roundsTo (hz : d.isZero = false) (h : d.Covers x) : ∃ u r,
    d.RoundsTo x u r ∧ UnitNear x u ∧ IsRounded (x / 2 ^ u) r := by
  have hpos : (0 : ℚ) < 2 ^ d.scale := by positivity
  have hmax : (d.mantissa : ℚ) + 1 ≤ 2 ^ 53 := by exact_mod_cast d.mantissa_lt
  have hhigh : x / 2 ^ d.scale ≤ d.mantissa + 1 / 2 := by
    rw [div_le_iff₀ hpos, ← upper_eq]
    exact h.le.2
  by_cases hbelow : -1074 < d.scale ∧ x / 2 ^ d.scale < 2 ^ 52
  · -- Only the shorter half of an interval above a power of two reaches below that power.
    obtain ⟨hs, hbelow⟩ := hbelow
    have hnarrow : d.narrowBelow = true := by
      by_contra hw
      have hlow := ((covers_iff_of_wide hz (by simpa using hw)).mp h).le.1
      have hm : (d.mantissa : ℚ) < 2 ^ 52 + 1 := by linarith
      have hm : d.mantissa < 2 ^ 52 + 1 := by exact_mod_cast hm
      have := mantissa_ge hs
      exact hw (narrowBelow_iff.mpr ⟨by omega, hs⟩)
    obtain ⟨hm, -⟩ := narrowBelow_iff.mp hnarrow
    obtain ⟨hlow, -⟩ := (covers_iff_of_narrow hz hnarrow).mp h
    refine ⟨d.scale - 1, 2 ^ 53, .carried rfl rfl hm, ⟨by omega, ?_, fun _ => ?_⟩, ?_⟩
    · rw [div_half_unit]
      linarith
    · rw [div_half_unit]
      linarith
    · unfold IsRounded
      rw [if_pos (by rfl), div_half_unit]
      push_cast
      constructor
      · linarith
      · linarith
  · have hnormal : -1074 < d.scale → 2 ^ 52 ≤ x / 2 ^ d.scale := fun hs =>
      not_lt.mp fun hlt => hbelow ⟨hs, hlt⟩
    refine ⟨d.scale, d.mantissa, .own rfl rfl, ⟨d.scale_ge, by linarith, hnormal⟩, ?_⟩
    cases hw : d.narrowBelow with
    | false => exact (covers_iff_of_wide hz hw).mp h
    | true =>
      obtain ⟨hm, hs⟩ := narrowBelow_iff.mp hw
      have hlow := hnormal hs
      rw [hm] at hhigh ⊢
      push_cast at hhigh
      unfold IsRounded
      rw [if_pos (by rfl)]
      push_cast
      constructor
      · linarith
      · linarith

/-- The rationals that round to a finite double are those in its interval. -/
theorem nearest_eq_iff (hd : d.IsFinite) (hz : d.isZero = false) {num den : ℕ} (hnum : 0 < num)
    (hden : 0 < den) :
    (nearest num den).bits.toNat = d.magnitude ↔ d.Covers ((num : ℚ) / den) := by
  obtain ⟨u, r, hunit, hround, hbits⟩ := nearest_spec hnum hden
  rw [hbits]
  have hmag := d.magnitude_eq
  have hfits := hd.magnitude_lt
  have hscale := d.scale_ge
  have hleast := hunit.least
  constructor
  · intro heq
    have hle : r ≤ 2 ^ 53 := by
      have : (r : ℚ) < 2 ^ 53 + 1 := by linarith [hround.le.1, hunit.small]
      exact_mod_cast Nat.lt_succ_iff.mp (by exact_mod_cast this)
    have hge : -1074 < u → 2 ^ 52 ≤ r := by
      intro hu
      have : (2 : ℚ) ^ 52 < r + 1 := by linarith [hround.le.2, hunit.normal hu]
      exact_mod_cast Nat.lt_succ_iff.mp (by exact_mod_cast this)
    have hsmall := d.mantissa_lt
    have hnormal : -1074 < d.scale → 2 ^ 52 ≤ d.mantissa := mantissa_ge
    have hcases : u = d.scale ∧ r = d.mantissa ∨
        u = d.scale - 1 ∧ r = 2 ^ 53 ∧ d.mantissa = 2 ^ 52 := by omega
    rcases hcases with ⟨hu, hr⟩ | ⟨hu, hr, hm⟩
    · exact RoundsTo.covers hz (.own hu hr) hunit hround
    · exact RoundsTo.covers hz (.carried hu hr hm) hunit hround
  · intro hcovers
    obtain ⟨u', r', hrounds, hunit', hround'⟩ := exists_roundsTo hz hcovers
    obtain rfl := hunit.unique hunit'
    obtain rfl := hround.unique hround'
    cases hrounds with
    | own hu hr => omega
    | carried hu hr hm => omega

end

end BlockScript.Double
