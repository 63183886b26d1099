/-
  Shortest decimals.

  `shortest` searches ever finer grids of multiples of a power of ten for a point that rounds to a
  double. What it finds is characterised without the search (`IsShortest`): it rounds to the double,
  no coarser grid has a point that does, and on its own grid no point that does is nearer. Having no
  coarser grid means having the fewest digits (`IsShortest.fewest`), and among all decimals with as
  few digits it is a nearest one (`IsShortest.closest`).
-/
import BlockScript.Proofs.Number.Rounding

namespace BlockScript

/-- The number that a decimal stands for. -/
def Decimal.value (c : Decimal) : ℚ := c.digits * 10 ^ c.exponent

namespace Double

section

variable {d : Double} {e : ℤ} {x : ℚ}

/-! ## Grid points -/

/-- The factor that clears the denominators of quarter units and of grid points. -/
def clearing (d : Double) (e : ℤ) : ℚ := d.gridOver e / 10 ^ e

theorem gridOver_pos (d : Double) (e : ℤ) : 0 < d.gridOver e :=
  Nat.mul_pos (Nat.pow_pos (by decide)) (Nat.pow_pos (by decide))

theorem clearing_pos (d : Double) (e : ℤ) : 0 < d.clearing e := by
  have hover : (0 : ℚ) < d.gridOver e := by exact_mod_cast d.gridOver_pos e
  unfold clearing
  positivity

theorem gridOver_eq (d : Double) (e : ℤ) : (d.gridOver e : ℚ) = 10 ^ e * d.clearing e := by
  unfold clearing
  field_simp

theorem gridTimes_eq (d : Double) (e : ℤ) :
    (d.gridTimes e : ℚ) = 2 ^ (d.scale - 2) * d.clearing e := by
  unfold clearing gridTimes gridOver
  rw [zpow_eq_div 10 e, zpow_eq_div 2 (d.scale - 2), neg_sub]
  push_cast [cast_pow]
  field_simp

theorem quarters_le_iff (quarters step : ℕ) :
    quarters * d.gridTimes e ≤ step * d.gridOver e ↔
      (quarters : ℚ) * 2 ^ (d.scale - 2) ≤ step * 10 ^ e := by
  rw [← Nat.cast_le (α := ℚ), Nat.cast_mul, Nat.cast_mul, gridTimes_eq, gridOver_eq, ← mul_assoc,
    ← mul_assoc, mul_le_mul_iff_left₀ (d.clearing_pos e)]

theorem le_quarters_iff (quarters step : ℕ) :
    step * d.gridOver e ≤ quarters * d.gridTimes e ↔
      (step : ℚ) * 10 ^ e ≤ quarters * 2 ^ (d.scale - 2) := by
  rw [← Nat.cast_le (α := ℚ), Nat.cast_mul, Nat.cast_mul, gridTimes_eq, gridOver_eq, ← mul_assoc,
    ← mul_assoc, mul_le_mul_iff_left₀ (d.clearing_pos e)]

theorem holds_iff {step : ℕ} : d.holds e step = true ↔ d.Covers (step * 10 ^ e) := by
  unfold holds Covers
  dsimp only
  split
  · rw [Bool.and_eq_true, decide_eq_true_eq, decide_eq_true_eq, quarters_le_iff, le_quarters_iff]
  · rw [Bool.and_eq_true, decide_eq_true_eq, decide_eq_true_eq, ← not_le, ← not_le,
      quarters_le_iff, le_quarters_iff, not_le, not_le]

theorem holds_eq_false {step : ℕ} (h : d.holds e step = false) : ¬d.Covers (step * 10 ^ e) := by
  rw [← holds_iff, h]
  exact Bool.false_ne_true

/-- The double itself lies inside its interval, a quarter unit away from either end or more. -/
theorem ends_apart (hz : d.isZero = false) :
    d.lower * (2 : ℚ) ^ (d.scale - 2) + 2 ^ (d.scale - 2) ≤ d.size ∧
      d.size + 2 ^ (d.scale - 2) < d.upper * (2 : ℚ) ^ (d.scale - 2) := by
  have hpos : (0 : ℚ) < 2 ^ d.scale := by positivity
  rw [upper_eq, lower_eq hz, quarter]
  unfold size
  split
  · exact ⟨by linarith, by linarith⟩
  · exact ⟨by linarith, by linarith⟩

theorem covers_of_lt (hl : d.lower * (2 : ℚ) ^ (d.scale - 2) < x)
    (hu : x < d.upper * (2 : ℚ) ^ (d.scale - 2)) : d.Covers x := by
  unfold Covers
  split
  · exact ⟨hl.le, hu.le⟩
  · exact ⟨hl, hu⟩

theorem covers_size (hz : d.isZero = false) : d.Covers d.size := by
  have hpos : (0 : ℚ) < 2 ^ (d.scale - 2) := by positivity
  obtain ⟨hlow, hhigh⟩ := ends_apart hz
  exact covers_of_lt (by linarith) (by linarith)

theorem Covers.pos (hz : d.isZero = false) (h : d.Covers x) : 0 < x := by
  have hpos : (0 : ℚ) < 2 ^ d.scale := by positivity
  have hm : (1 : ℚ) ≤ d.mantissa := by exact_mod_cast mantissa_pos hz
  refine lt_of_lt_of_le ?_ h.le.1
  rw [lower_eq hz]
  split
  · exact mul_pos (by linarith) hpos
  · exact mul_pos (by linarith) hpos

/-! ## One grid -/

/-- The number of steps from zero to the last grid point that is not above the double. -/
def below (d : Double) (e : ℤ) : ℕ := d.center * d.gridTimes e / d.gridOver e

/-- How far above the grid point below it a double lies, as a part of a step. -/
def part (d : Double) (e : ℤ) : ℚ := (d.center * d.gridTimes e % d.gridOver e : ℕ) / d.gridOver e

theorem part_nonneg (d : Double) (e : ℤ) : 0 ≤ d.part e := by
  unfold part
  positivity

theorem part_lt_one (d : Double) (e : ℤ) : d.part e < 1 := by
  unfold part
  rw [div_lt_one (by exact_mod_cast d.gridOver_pos e)]
  exact_mod_cast Nat.mod_lt _ (d.gridOver_pos e)

theorem part_lt_half_iff (d : Double) (e : ℤ) :
    2 * (d.center * d.gridTimes e % d.gridOver e) < d.gridOver e ↔ d.part e < 1 / 2 := by
  unfold part
  rw [div_lt_div_iff₀ (by exact_mod_cast d.gridOver_pos e) two_pos, mul_comm, one_mul]
  exact_mod_cast Iff.rfl

theorem size_eq_below (d : Double) (e : ℤ) : d.size = (d.below e + d.part e) * 10 ^ e := by
  have hsplit : (d.center * d.gridTimes e : ℚ) = d.gridOver e * d.below e +
      (d.center * d.gridTimes e % d.gridOver e : ℕ) := by
    exact_mod_cast (Nat.div_add_mod _ _).symm
  have hsize : d.size * d.clearing e = d.center * d.gridTimes e := by
    rw [gridTimes_eq, quarter]
    unfold size center
    push_cast
    ring
  have hclear := (d.clearing_pos e).ne'
  apply mul_right_cancel₀ hclear
  rw [hsize, hsplit]
  unfold part
  rw [gridOver_eq]
  field_simp

/-- The distance of a double from a grid point is that in steps, times the length of a step. -/
theorem abs_size_sub (d : Double) (e : ℤ) (step : ℕ) :
    |d.size - step * 10 ^ e| = |(d.below e : ℚ) + d.part e - step| * 10 ^ e := by
  have hten : (0 : ℚ) < 10 ^ e := by positivity
  rw [d.size_eq_below e, ← sub_mul, abs_mul, abs_of_pos hten]

/-- A grid point that rounds to a double has one of the neighbours of the double, which rounds to it
    too, between itself and the double. -/
theorem neighbour_of_covers (hz : d.isZero = false) {step : ℕ} (h : d.Covers (step * 10 ^ e)) :
    (step ≤ d.below e ∧ d.Covers (d.below e * 10 ^ e)) ∨
      (d.below e + 1 ≤ step ∧ d.Covers ((d.below e + 1 : ℕ) * 10 ^ e)) := by
  have hnonneg := d.part_nonneg e
  have hsmall := d.part_lt_one e
  have hself := covers_size hz
  have hsize := d.size_eq_below e
  rcases Nat.lt_or_ge (d.below e) step with hlt | hle
  · refine .inr ⟨hlt, hself.between h ?_ ?_⟩
    · rw [hsize]
      push_cast
      gcongr
    · gcongr
      exact hlt
  · refine .inl ⟨hle, h.between hself ?_ ?_⟩
    · gcongr
    · rw [hsize]
      gcongr
      linarith

theorem onGrid?_eq_none (hz : d.isZero = false) (h : d.onGrid? e = none) (step : ℕ) :
    ¬d.Covers (step * 10 ^ e) := by
  intro hcovers
  unfold onGrid? at h
  dsimp only at h
  split at h
  · cases h
  · cases h
  · cases h
  · rename_i hbelow habove
    rcases neighbour_of_covers hz hcovers with ⟨-, hc⟩ | ⟨-, hc⟩
    · exact holds_eq_false hbelow hc
    · exact holds_eq_false habove hc

/-- Whether a decimal rounds to a double and no other point of its grid that does is nearer. -/
def IsNearest (d : Double) (c : Decimal) : Prop :=
  d.Covers c.value ∧ ∀ step : ℕ, d.Covers (step * 10 ^ c.exponent) →
    |d.size - c.value| ≤ |d.size - step * 10 ^ c.exponent|

/-- The neighbour below is nearest if it is at most half a step away or the one above does not round
    to the double. -/
theorem isNearest_below (hz : d.isZero = false) (hc : d.Covers (d.below e * 10 ^ e))
    (h : d.part e ≤ 1 / 2 ∨ ¬d.Covers ((d.below e + 1 : ℕ) * 10 ^ e)) :
    d.IsNearest ⟨d.below e, e⟩ := by
  refine ⟨hc, fun step hstep => ?_⟩
  have hnonneg := d.part_nonneg e
  dsimp only [Decimal.value]
  rw [abs_size_sub, abs_size_sub]
  gcongr ?_ * _
  rw [add_sub_cancel_left, abs_of_nonneg hnonneg]
  rcases neighbour_of_covers hz hstep with ⟨hle, -⟩ | ⟨hlt, hc'⟩
  · have hle : (step : ℚ) ≤ d.below e := by exact_mod_cast hle
    exact le_abs.mpr (.inl (by linarith))
  · have hlt : (d.below e : ℚ) + 1 ≤ step := by exact_mod_cast hlt
    have hhalf := h.resolve_right (not_not.mpr hc')
    exact le_abs.mpr (.inr (by linarith))

/-- The neighbour above is nearest if it is at most half a step away or the one below does not round
    to the double. -/
theorem isNearest_above (hz : d.isZero = false) (hc : d.Covers ((d.below e + 1 : ℕ) * 10 ^ e))
    (h : 1 / 2 ≤ d.part e ∨ ¬d.Covers (d.below e * 10 ^ e)) :
    d.IsNearest ⟨d.below e + 1, e⟩ := by
  refine ⟨hc, fun step hstep => ?_⟩
  have hsmall := d.part_lt_one e
  dsimp only [Decimal.value]
  rw [abs_size_sub, abs_size_sub]
  gcongr ?_ * _
  have hdistance : |(d.below e : ℚ) + d.part e - (d.below e + 1 : ℕ)| = 1 - d.part e := by
    push_cast
    rw [add_sub_add_left_eq_sub, abs_of_nonpos (by linarith), neg_sub]
  rw [hdistance]
  rcases neighbour_of_covers hz hstep with ⟨hle, hc'⟩ | ⟨hlt, -⟩
  · have hle : (step : ℚ) ≤ d.below e := by exact_mod_cast hle
    have hhalf := h.resolve_right (not_not.mpr hc')
    exact le_abs.mpr (.inl (by linarith))
  · have hlt : (d.below e : ℚ) + 1 ≤ step := by exact_mod_cast hlt
    exact le_abs.mpr (.inr (by linarith))

theorem onGrid?_eq_some (hz : d.isZero = false) {digits : ℕ} (h : d.onGrid? e = some digits) :
    d.IsNearest ⟨digits, e⟩ := by
  unfold onGrid? at h
  dsimp only at h
  split at h
  · rename_i hbelow habove
    have hbelow := holds_iff.mp hbelow
    have habove := holds_iff.mp habove
    split at h
    · rename_i hhalf
      rw [part_lt_half_iff] at hhalf
      cases h
      exact isNearest_below hz hbelow (.inl hhalf.le)
    · rename_i hhalf
      rw [part_lt_half_iff, not_lt] at hhalf
      cases h
      exact isNearest_above hz habove (.inl hhalf)
  · rename_i hbelow habove
    cases h
    exact isNearest_below hz (holds_iff.mp hbelow) (.inr (holds_eq_false habove))
  · rename_i hbelow habove
    cases h
    exact isNearest_above hz (holds_iff.mp habove) (.inr (holds_eq_false hbelow))
  · cases h

/-! ## The search -/

/-- Whether a decimal is nearest to a double on its grid and no coarser grid has a point that rounds
    to the double. -/
structure IsShortest (d : Double) (c : Decimal) : Prop where
  nearest : d.IsNearest c
  coarsest : ∀ e : ℤ, c.exponent < e → ∀ step : ℕ, ¬d.Covers (step * 10 ^ e)

/-- The search from a grid on which nothing rounds to the double, if a later one has a hit. -/
theorem isShortest_coarsest (hz : d.isZero = false) (grids : ℕ) (e : ℤ)
    (habove : ∀ e' : ℤ, e < e' → ∀ step : ℕ, ¬d.Covers (step * 10 ^ e'))
    {least : ℤ} (hleast : e - grids < least) {step : ℕ} (hit : d.Covers (step * 10 ^ least)) :
    d.IsShortest (d.coarsest grids e) := by
  induction grids generalizing e with
  | zero => exact absurd hit (habove least (by omega) step)
  | succ grids ih =>
    unfold coarsest
    split
    · rename_i digits hsome
      exact ⟨onGrid?_eq_some hz hsome, habove⟩
    · rename_i hnone
      refine ih (e - 1) (fun e' he' => ?_) (by omega)
      rcases eq_or_lt_of_le (show e ≤ e' by omega) with rfl | hlt
      · exact onGrid?_eq_none hz hnone
      · exact habove e' hlt

/-- No double reaches `10 ^ 309`. -/
theorem not_covers_of_large (hd : d.IsFinite) (hz : d.isZero = false) (he : 309 ≤ e)
    (step : ℕ) : ¬d.Covers (step * 10 ^ e) := by
  intro h
  have hstep : (1 : ℚ) ≤ step := by
    have hpos := h.pos hz
    rcases Nat.eq_zero_or_pos step with hzero | hone
    · rw [hzero, Nat.cast_zero, zero_mul] at hpos
      exact absurd hpos (lt_irrefl 0)
    · exact_mod_cast hone
  have hpoint : (10 : ℚ) ^ 309 ≤ step * 10 ^ e := by
    calc (10 : ℚ) ^ 309 = 1 * 10 ^ (309 : ℤ) := by rw [one_mul, zpow_ofNat]
      _ ≤ step * 10 ^ e := by
          gcongr
          norm_num
  have hupper : d.upper * (2 : ℚ) ^ (d.scale - 2) ≤ 2 ^ 1024 := by
    have hm : (d.mantissa : ℚ) + 1 ≤ 2 ^ 53 := by exact_mod_cast d.mantissa_lt
    have hs : (2 : ℚ) ^ d.scale ≤ 2 ^ (971 : ℤ) := zpow_le_zpow_right₀ (by norm_num) hd.scale_le
    calc d.upper * (2 : ℚ) ^ (d.scale - 2) = (d.mantissa + 1 / 2) * 2 ^ d.scale := upper_eq d
      _ ≤ 2 ^ 53 * 2 ^ (971 : ℤ) := by
          gcongr
          linarith
      _ = 2 ^ 1024 := by rw [zpow_ofNat, ← pow_add]
  have hgap : (2 : ℚ) ^ 1024 < 10 ^ 309 := by
    exact_mod_cast (by decide +kernel : 2 ^ 1024 < 10 ^ 309)
  exact absurd (hpoint.trans (h.le.2.trans hupper)) (not_le.mpr hgap)

/-- The finest grid has a point in every interval. -/
theorem covers_finest (hz : d.isZero = false) :
    d.Covers (d.below (-324) * 10 ^ (-324 : ℤ)) := by
  have hgap : (10 : ℚ) ^ (-324 : ℤ) < 2 ^ (-1076 : ℤ) := by
    rw [zpow_neg, zpow_neg, inv_lt_inv₀ (by positivity) (by positivity), zpow_ofNat, zpow_ofNat]
    exact_mod_cast (by decide +kernel : 2 ^ 1076 < 10 ^ 324)
  have hquarter : (2 : ℚ) ^ (-1076 : ℤ) ≤ 2 ^ (d.scale - 2) :=
    zpow_le_zpow_right₀ (by norm_num) (by linarith [d.scale_ge])
  have hten : (0 : ℚ) < 10 ^ (-324 : ℤ) := by positivity
  have hsize := d.size_eq_below (-324)
  obtain ⟨hlow, hhigh⟩ := ends_apart hz
  apply covers_of_lt
  · nlinarith [d.part_lt_one (-324)]
  · nlinarith [d.part_nonneg (-324)]

/-- The search ends at a shortest decimal. -/
theorem isShortest_shortest (hd : d.IsFinite) (hz : d.isZero = false) :
    d.IsShortest d.shortest :=
  isShortest_coarsest hz _ 309 (fun _ he => not_covers_of_large hd hz he.le) (by norm_num)
    (covers_finest hz)

/-! ## The fewest digits -/

/-- A power of ten with a positive exponent lies on the next coarser grid. -/
theorem IsShortest.not_covers_power {c : Decimal} (h : d.IsShortest c) (k : ℕ) :
    ¬d.Covers (10 ^ (k + 1) * 10 ^ c.exponent) := by
  have hcoarser := h.coarsest (c.exponent + 1) (by omega) (10 ^ k)
  rwa [zpow_add_one₀ (by norm_num), mul_comm (_ ^ c.exponent), ← mul_assoc, Nat.cast_pow,
    Nat.cast_ofNat, ← pow_succ] at hcoarser

theorem IsShortest.exponent_ge {c : Decimal} (h : d.IsShortest c) {s : ℕ} {m : ℤ}
    (hc : d.Covers (s * 10 ^ m)) : m ≤ c.exponent :=
  not_lt.mp fun hlt => h.coarsest m hlt s hc

theorem IsShortest.digits_pos {c : Decimal} (hz : d.isZero = false) (h : d.IsShortest c) :
    0 < c.digits := by
  have hpos := h.nearest.1.pos hz
  rcases Nat.eq_zero_or_pos c.digits with hzero | hpositive
  · rw [Decimal.value, hzero, Nat.cast_zero, zero_mul] at hpos
    exact absurd hpos (lt_irrefl 0)
  · exact hpositive

theorem IsShortest.not_dvd {c : Decimal} (h : d.IsShortest c) : ¬10 ∣ c.digits := by
  rintro ⟨tenth, htenth⟩
  refine h.coarsest (c.exponent + 1) (by omega) tenth ?_
  have hvalue : c.value = tenth * 10 ^ (c.exponent + 1) := by
    rw [Decimal.value, htenth, zpow_add_one₀ (by norm_num)]
    push_cast
    ring
  rw [← hvalue]
  exact h.nearest.1

/-- Below a power of ten times the unit of a shortest decimal lie all decimals with as many digits
    on a grid that is not coarser. -/
theorem lt_power {s k : ℕ} (hs : s < 10 ^ k) {m q : ℤ} (hle : m ≤ q) :
    (s : ℚ) * 10 ^ m < 10 ^ k * 10 ^ q := by
  have hs : (s : ℚ) < 10 ^ k := by exact_mod_cast hs
  calc (s : ℚ) * 10 ^ m < 10 ^ k * 10 ^ m := by gcongr
    _ ≤ 10 ^ k * 10 ^ q := by
        gcongr
        norm_num

/-- No decimal with fewer digits rounds to the double. -/
theorem IsShortest.fewest {c : Decimal} (hz : d.isZero = false) (h : d.IsShortest c) {s k : ℕ}
    {m : ℤ} (hs : s < 10 ^ k) (hc : d.Covers (s * 10 ^ m)) : c.digits < 10 ^ k := by
  by_contra hge
  have hge : (10 : ℚ) ^ k ≤ c.digits := by exact_mod_cast not_lt.mp hge
  have hpower : d.Covers (10 ^ k * 10 ^ c.exponent) := by
    refine hc.between h.nearest.1 (lt_power hs (h.exponent_ge hc)).le ?_
    unfold Decimal.value
    gcongr
  cases k with
  | zero =>
    have hzero : s = 0 := by omega
    have hpos := hc.pos hz
    rw [hzero, Nat.cast_zero, zero_mul] at hpos
    exact absurd hpos (lt_irrefl 0)
  | succ k => exact h.not_covers_power k hpower

/-! ## The closest of them -/

theorem least_unit : (2 : ℚ) ^ (-1074 : ℤ) ≤ 5 * 10 ^ (-324 : ℤ) ∧
    100 * (10 : ℚ) ^ (-324 : ℤ) ≤ 21 * 2 ^ (-1074 : ℤ) := by
  rw [zpow_neg, zpow_neg, zpow_ofNat, zpow_ofNat, ← div_eq_mul_inv, ← div_eq_mul_inv,
    ← div_eq_mul_inv, inv_le_iff_one_le_mul₀ (by positivity), div_mul_eq_mul_div,
    one_le_div (by positivity), div_le_div_iff₀ (by positivity) (by positivity)]
  constructor
  · exact_mod_cast (by decide +kernel : 10 ^ 324 ≤ 5 * 2 ^ 1074)
  · exact_mod_cast (by decide +kernel : 100 * 2 ^ 1074 ≤ 21 * 10 ^ 324)

/-- A power of ten below the least unit is at most the `324`th one. -/
theorem exponent_le_of_lt {q : ℤ} (h : (10 : ℚ) ^ q < 2 ^ (-1074 : ℤ)) : q ≤ -324 := by
  by_contra hlt
  have hpower : (10 : ℚ) ^ (-324 + 1 : ℤ) ≤ 10 ^ q := zpow_le_zpow_right₀ (by norm_num) (by omega)
  rw [zpow_add_one₀ (by norm_num)] at hpower
  have hten : (0 : ℚ) < 10 ^ (-324 : ℤ) := by positivity
  linarith [least_unit.1]

/-- An interval that holds a power of ten and reaches down to nine tenths of it is that of a double
    nearer to the power: only the doubles next to zero have intervals that long. -/
theorem size_ge_of_wide (hz : d.isZero = false) {q : ℤ} (hx : d.Covers x) (hle : x ≤ 9 * 10 ^ q)
    (hq : d.Covers (10 * 10 ^ q)) : 19 * 10 ^ q ≤ 2 * d.size := by
  by_contra hfar
  rw [not_le] at hfar
  have hten : (0 : ℚ) < 10 ^ q := by positivity
  have hunit : (0 : ℚ) < 2 ^ d.scale := by positivity
  have hlow : d.size - 2 ^ d.scale / 2 ≤ 9 * 10 ^ q := by
    have hend := hx.le.1.trans hle
    rw [lower_eq hz] at hend
    unfold size
    split at hend
    · linarith
    · linarith
  have hhigh : 10 * 10 ^ q ≤ d.size + 2 ^ d.scale / 2 := by
    have hend := hq.le.2
    rw [upper_eq] at hend
    unfold size
    linarith
  have hpower : (10 : ℚ) ^ q < 2 ^ d.scale := by linarith
  have hsmall : d.mantissa < 10 := by
    have : (d.mantissa : ℚ) < 10 := by
      rw [← mul_lt_mul_iff_left₀ hunit]
      unfold size at hlow
      linarith
    exact_mod_cast this
  have hscale : d.scale = -1074 := by
    by_contra hne
    have := mantissa_ge (show -1074 < d.scale from lt_of_le_of_ne d.scale_ge (Ne.symm hne))
    omega
  unfold size at hlow hhigh hfar
  rw [hscale] at hlow hhigh hfar hpower hunit
  obtain ⟨hunitLow, hunitHigh⟩ := least_unit
  have hpos := mantissa_pos hz
  rcases eq_or_lt_of_le (exponent_le_of_lt hpower) with rfl | hlt
  · -- The power is a fifth of the unit, so the mantissa is two.
    have hone : d.mantissa ≠ 1 := by
      intro h
      rw [h, Nat.cast_one] at hhigh
      linarith
    have htwo : d.mantissa ≠ 2 := by
      intro h
      rw [h, Nat.cast_ofNat] at hfar
      linarith
    have hthree : (3 : ℚ) * 2 ^ (-1074 : ℤ) ≤ d.mantissa * 2 ^ (-1074 : ℤ) := by
      gcongr
      exact_mod_cast (by omega : 3 ≤ d.mantissa)
    linarith
  · have hnext : (10 : ℚ) ^ (q + 1) ≤ 10 ^ (-324 : ℤ) :=
      zpow_le_zpow_right₀ (by norm_num) (by omega)
    rw [zpow_add_one₀ (by norm_num)] at hnext
    have hone : (1 : ℚ) * 2 ^ (-1074 : ℤ) ≤ d.mantissa * 2 ^ (-1074 : ℤ) := by
      gcongr
      exact_mod_cast hpos
    linarith

/-- Of the decimals with as many digits none that rounds to the double is closer to it. -/
theorem IsShortest.closest {c : Decimal} (hz : d.isZero = false) (h : d.IsShortest c) {s k : ℕ}
    {m : ℤ} (hk : 10 ^ k ≤ c.digits) (hs : s < 10 ^ (k + 1)) (hc : d.Covers (s * 10 ^ m)) :
    |d.size - c.value| ≤ |d.size - s * 10 ^ m| := by
  rcases eq_or_lt_of_le (h.exponent_ge hc) with rfl | hlt
  · exact h.nearest.2 s hc
  -- On a finer grid the decimal lies below the power of ten, which then rounds to the double too.
  have hk : (10 : ℚ) ^ k ≤ c.digits := by exact_mod_cast hk
  have hfiner : (s : ℚ) * 10 ^ m < 10 ^ k * 10 ^ c.exponent := by
    have := lt_power hs (show m ≤ c.exponent - 1 by omega)
    rwa [pow_succ, mul_assoc, ← zpow_one_add₀ (by norm_num), add_sub_cancel] at this
  have hpower : d.Covers (10 ^ k * 10 ^ c.exponent) := by
    refine hc.between h.nearest.1 hfiner.le ?_
    unfold Decimal.value
    gcongr
  cases k with
  | succ k => exact absurd hpower (h.not_covers_power k)
  | zero =>
    have hten : (10 : ℚ) ^ c.exponent = 10 * 10 ^ (c.exponent - 1) := by
      rw [← zpow_one_add₀ (by norm_num), add_sub_cancel]
    have hnine : (s : ℚ) * 10 ^ m ≤ 9 * 10 ^ (c.exponent - 1) := by
      gcongr
      · exact_mod_cast (by omega : s ≤ 9)
      · norm_num
      · omega
    have hone := h.nearest.2 1 (by simpa using hpower)
    rw [pow_zero, one_mul, hten] at hpower
    rw [Nat.cast_one, one_mul, hten] at hone
    have hsize := size_ge_of_wide hz hc hnine hpower
    refine hone.trans (abs_le.mpr ⟨?_, ?_⟩)
    · exact neg_le.mpr (le_abs.mpr (.inl (by linarith)))
    · exact le_abs.mpr (.inl (by linarith))

end

end Double

end BlockScript
