import ActionBlock.Proofs.Single
import Mathlib.Algebra.Order.Field.Power
import Mathlib.Algebra.Order.Field.Rat
import Mathlib.Tactic.FieldSimp

/-!
# Rounding to the nearest number

What the conversions between the formats compute, in terms of the rational numbers that bit patterns
stand for. A magnitude is rounded to one of the format that is nearest, and of two that are equally
near to the one whose bit pattern is even; it is refused if it is at least half a unit beyond the
largest.

The argument is about whole numbers. The unit that rounding chooses is as fine as the precision
allows, so all magnitudes of the format that are not far too small are whole numbers of units, and a
whole number that is nearest among all whole numbers is nearest among those.
-/

namespace ActionBlock

/-! ### Whole numbers -/

/-- The error of a quotient is half a divisor at most, and if it is as much the quotient is even. -/
theorem roundDiv_error (n : Nat) {d : Nat} (hd : 0 < d) :
  2 * |(roundDiv n d * d : Int) - n| ≤ d
    ∧ (2 * |(roundDiv n d * d : Int) - n| = d → Even (roundDiv n d))
  := by
  have hn : (n : Int) = d * (n / d : Nat) + (n % d : Nat) := by
    exact_mod_cast (Nat.div_add_mod n d).symm
  have hmod := Nat.mod_lt n hd
  simp only [roundDiv]
  generalize n / d = q at hn
  generalize n % d = r at hn hmod
  have hdown : ((q : Int) * d) - n = -r := by
    rw [hn]
    ring
  have hup : ((q + 1 : Nat) : Int) * d - n = d - r := by
    rw [hn]
    push_cast
    ring
  split
  · rw [hdown, abs_neg, abs_of_nonneg (by omega)]
    omega
  split
  · rw [hup, abs_of_nonneg (by omega)]
    omega
  · obtain hq | hq : q % 2 = 0 ∨ q % 2 = 1 := by omega
    · rw [hq, add_zero, hdown, abs_neg, abs_of_nonneg (by omega)]
      exact ⟨by omega, fun _ => Nat.even_iff.mpr hq⟩
    · rw [hq, hup, abs_of_nonneg (by omega)]
      exact ⟨by omega, fun _ => Nat.even_iff.mpr (by omega)⟩

/-- The whole number nearest to a number, the even one of two. -/
structure NearestWhole (s : ℚ) (n : Nat) : Prop where
  le_half : |(n : ℚ) - s| ≤ 1 / 2
  even : |(n : ℚ) - s| = 1 / 2 → Even n

namespace NearestWhole

variable {s : ℚ} {n : Nat}

theorem of_eq (h : (n : ℚ) = s) :
  NearestWhole s n
  := by
  have hzero : |(n : ℚ) - s| = 0 := by rw [h, sub_self, abs_zero]
  constructor <;> rw [hzero] <;> norm_num

/-- Division with rounding gives the nearest whole number. -/
theorem of_div (n : Nat) {d : Nat} (hd : 0 < d) :
  NearestWhole (n / d) (roundDiv n d)
  := by
  have hpos : (0 : ℚ) < d := by exact_mod_cast hd
  obtain ⟨hle, heven⟩ := roundDiv_error n hd
  have hscaled : |(roundDiv n d : ℚ) - n / d| * d
      = (|(roundDiv n d * d : Int) - n| : Int) := by
    rw [← abs_of_pos hpos, ← abs_mul, abs_of_pos hpos, sub_mul, div_mul_cancel₀ _ hpos.ne']
    push_cast
    rfl
  constructor
  · have hle' : 2 * (|(roundDiv n d : ℚ) - n / d| * d) ≤ d := by
      rw [hscaled]
      exact_mod_cast hle
    nlinarith
  · intro htie
    apply heven
    rw [htie] at hscaled
    have hhalf : 2 * ((|(roundDiv n d * d : Int) - n| : Int) : ℚ) = d := by
      rw [← hscaled]
      ring
    exact_mod_cast hhalf

/-- No other whole number is nearer, and only an even one has another that is as near. -/
theorem le_of_int (h : NearestWhole s n) (k : Int) :
  |(n : ℚ) - s| ≤ |(k : ℚ) - s|
    ∧ (|(k : ℚ) - s| = |(n : ℚ) - s| → (k : ℚ) ≠ n → Even n)
  := by
  by_cases hk : k = n
  · subst hk
    exact ⟨le_rfl, fun _ hne => absurd rfl hne⟩
  have hapart : (1 : ℚ) ≤ |(n : ℚ) - k| := by
    have hint : (1 : Int) ≤ |(n : Int) - k| := Int.one_le_abs (by omega)
    exact_mod_cast hint
  have htriangle : |(n : ℚ) - k| ≤ |(n : ℚ) - s| + |(k : ℚ) - s| := by
    rw [abs_sub_comm (k : ℚ) s]
    apply abs_sub_le
  have hhalf := h.le_half
  constructor
  · linarith
  · intro htie _
    apply h.even
    linarith

end NearestWhole

namespace Format

variable {f : Format} {m n : Nat} {e unit : Int}

/-! ### Units -/

/-- The exponent of the unit that rounding chooses. -/
def roundUnit (f : Format) (m : Nat) (e : Int) : Int :=
  max f.least (e + (m.log2 + 1 : Nat) - f.precision)

/-- The number of these units that rounding finds. -/
def roundCount (f : Format) (m : Nat) (e : Int) : Nat :=
  if f.roundUnit m e ≤ e then m * 2 ^ (e - f.roundUnit m e).toNat
  else roundDiv m (2 ^ (f.roundUnit m e - e).toNat)

/-- A number of units that has grown by a bit is counted in the next larger unit. -/
theorem round_eq (hm : m ≠ 0) :
  f.round m e
    = if f.roundCount m e = 2 ^ f.precision then
        if f.most < f.roundUnit m e + 1 then none
        else some (2 ^ (f.precision - 1), f.roundUnit m e + 1)
      else if f.most < f.roundUnit m e then none
      else some (f.roundCount m e, f.roundUnit m e)
  := by
  rw [round, if_neg hm]
  by_cases hfull : f.roundCount m e = 2 ^ f.precision
  · rw [if_pos hfull]
    rw [roundCount, roundUnit] at hfull
    simp only [if_pos hfull]
    rfl
  · rw [if_neg hfull]
    rw [roundCount, roundUnit] at hfull
    simp only [if_neg hfull]
    rfl

theorem two_zpow_pos (u : Int) :
  (0 : ℚ) < 2 ^ u
  := zpow_pos two_pos u

theorem two_zpow_natCast (k : Nat) :
  (2 : ℚ) ^ (k : Int) = (2 ^ k : Nat)
  := by
  rw [zpow_natCast]
  norm_cast

theorem two_zpow_toNat {k : Int} (hk : 0 ≤ k) :
  (2 : ℚ) ^ k = (2 ^ k.toNat : Nat)
  := by
  rw [← two_zpow_natCast, Int.toNat_of_nonneg hk]

/-- The magnitude in terms of the unit that rounding chooses. -/
theorem scaled_mul_unit (m : Nat) (e unit : Int) :
  (m : ℚ) * 2 ^ (e - unit) * 2 ^ unit = m * 2 ^ e
  := by
  rw [mul_assoc, ← zpow_add₀ two_ne_zero, sub_add_cancel]

/-- The count is the whole number of units nearest to the value. -/
theorem nearestWhole_roundCount (f : Format) (m : Nat) (e : Int) :
  NearestWhole (m * 2 ^ (e - f.roundUnit m e)) (f.roundCount m e)
  := by
  rw [roundCount]
  split
  · rename_i hle
    apply NearestWhole.of_eq
    rw [two_zpow_toNat (by omega)]
    push_cast
    rfl
  · rename_i hlt
    have hdiv : (m : ℚ) * 2 ^ (e - f.roundUnit m e)
        = m / (2 ^ (f.roundUnit m e - e).toNat : Nat) := by
      rw [← two_zpow_toNat (by omega), ← neg_sub, zpow_neg, div_eq_mul_inv]
    rw [hdiv]
    exact NearestWhole.of_div m (by positivity)

/-- A value counted in its unit lies below the largest significand. -/
theorem scaled_lt (f : Format) (m : Nat) (e : Int) :
  (m : ℚ) * 2 ^ (e - f.roundUnit m e) < (2 ^ f.precision : Nat)
  := by
  have hlog : (m : ℚ) < 2 ^ ((m.log2 + 1 : Nat) : Int) := by
    rw [zpow_natCast]
    exact_mod_cast Nat.lt_log2_self
  have hunit : e + (m.log2 + 1 : Nat) - f.precision ≤ f.roundUnit m e := le_max_right _ _
  calc (m : ℚ) * 2 ^ (e - f.roundUnit m e)
      < 2 ^ ((m.log2 + 1 : Nat) : Int) * 2 ^ (e - f.roundUnit m e) :=
        mul_lt_mul_of_pos_right hlog (two_zpow_pos _)
    _ = 2 ^ (((m.log2 + 1 : Nat) : Int) + (e - f.roundUnit m e)) := (zpow_add₀ two_ne_zero _ _).symm
    _ ≤ 2 ^ (f.precision : Int) := zpow_le_zpow_right₀ one_le_two (by omega)
    _ = (2 ^ f.precision : Nat) := two_zpow_natCast _

/-- Unless the unit is the least one, there are as many units as the precision allows. -/
theorem least_or_le_scaled (hp : 0 < f.precision) (hm : m ≠ 0) (e : Int) :
  f.roundUnit m e = f.least
    ∨ ((2 ^ (f.precision - 1) : Nat) : ℚ) ≤ m * 2 ^ (e - f.roundUnit m e)
  := by
  obtain hleast | hunit := max_choice f.least (e + (m.log2 + 1 : Nat) - f.precision)
  · exact .inl hleast
  · right
    have hlog : (2 : ℚ) ^ (m.log2 : Int) ≤ m := by
      rw [zpow_natCast]
      exact_mod_cast Nat.log2_self_le hm
    have hexp : ((f.precision - 1 : Nat) : Int) = m.log2 + (e - f.roundUnit m e) := by
      rw [roundUnit, hunit]
      omega
    calc ((2 ^ (f.precision - 1) : Nat) : ℚ)
        = 2 ^ ((f.precision - 1 : Nat) : Int) := (two_zpow_natCast _).symm
      _ = 2 ^ (m.log2 : Int) * 2 ^ (e - f.roundUnit m e) := by
          rw [hexp, zpow_add₀ two_ne_zero]
      _ ≤ m * 2 ^ (e - f.roundUnit m e) :=
          mul_le_mul_of_nonneg_right hlog (two_zpow_pos _).le

/-! ### Nearest magnitudes -/

theorem abs_mul_unit_sub (a s : ℚ) (unit : Int) :
  |a * 2 ^ unit - s * 2 ^ unit| = |a - s| * 2 ^ unit
  := by
  rw [← sub_mul, abs_mul, abs_of_pos (two_zpow_pos unit)]

/-- In a finer unit a magnitude of a format is below any with a full number of units. -/
theorem Canonical.lt_of_finer {n' : Nat} {unit' : Int} (hc : Canonical f n' unit')
    (hp : 0 < f.precision) (hunit : unit' < unit) :
  (n' : ℚ) * 2 ^ unit' < (2 ^ (f.precision - 1) : Nat) * 2 ^ unit
  := by
  have hlt : (n' : ℚ) < (2 ^ f.precision : Nat) := by exact_mod_cast hc.lt
  calc (n' : ℚ) * 2 ^ unit'
      < (2 ^ f.precision : Nat) * 2 ^ unit' := mul_lt_mul_of_pos_right hlt (two_zpow_pos _)
    _ = (2 ^ (f.precision - 1) : Nat) * 2 ^ (unit' + 1) := by
        rw [two_pow_precision hp, zpow_add_one₀ two_ne_zero]
        push_cast
        ring
    _ ≤ (2 ^ (f.precision - 1) : Nat) * 2 ^ unit := by
        apply mul_le_mul_of_nonneg_left _ (Nat.cast_nonneg _)
        exact zpow_le_zpow_right₀ one_le_two hunit

/-- A whole number of units that is nearest is nearest among the magnitudes of a format, if no
finer unit would do. -/
theorem Canonical.nearest_le {n' : Nat} {unit' : Int} (hc : Canonical f n' unit')
    (hp : 0 < f.precision) {s : ℚ} (h : NearestWhole s n)
    (hs : unit = f.least ∨ ((2 ^ (f.precision - 1) : Nat) : ℚ) ≤ s) :
  |(n : ℚ) * 2 ^ unit - s * 2 ^ unit| ≤ |(n' : ℚ) * 2 ^ unit' - s * 2 ^ unit|
    ∧ (|(n' : ℚ) * 2 ^ unit' - s * 2 ^ unit| = |(n : ℚ) * 2 ^ unit - s * 2 ^ unit| →
      (n' : ℚ) * 2 ^ unit' ≠ n * 2 ^ unit → Even n)
  := by
  have hpos := two_zpow_pos unit
  by_cases hunit : unit ≤ unit'
  · have hwhole : (n' : ℚ) * 2 ^ unit'
        = ((n' * 2 ^ (unit' - unit).toNat : Nat) : Int) * 2 ^ unit := by
      rw [← scaled_mul_unit n' unit' unit, two_zpow_toNat (by omega)]
      push_cast
      rfl
    obtain ⟨hle, heven⟩ := h.le_of_int (n' * 2 ^ (unit' - unit).toNat : Nat)
    rw [hwhole, abs_mul_unit_sub, abs_mul_unit_sub]
    refine ⟨mul_le_mul_of_nonneg_right hle hpos.le, fun htie hne => heven ?_ ?_⟩
    · exact mul_right_cancel₀ hpos.ne' htie
    · exact fun heq => hne (by rw [heq])
  · -- The full number of units is no nearer than `n`, and the other magnitude is below it.
    have hfull := hs.resolve_left (by have := hc.least_le; omega)
    have hbelow := hc.lt_of_finer hp (not_le.mp hunit)
    have hnear : |(n : ℚ) - s| ≤ s - (2 ^ (f.precision - 1) : Nat) := by
      have hint := (h.le_of_int ((2 ^ (f.precision - 1) : Nat) : Int)).1
      rwa [Int.cast_natCast, abs_sub_comm ((2 ^ (f.precision - 1) : Nat) : ℚ) s,
        abs_of_nonneg (sub_nonneg.mpr hfull)] at hint
    have hstrict : |(n : ℚ) * 2 ^ unit - s * 2 ^ unit|
        < |(n' : ℚ) * 2 ^ unit' - s * 2 ^ unit| := by
      rw [abs_mul_unit_sub]
      calc |(n : ℚ) - s| * 2 ^ unit ≤ (s - (2 ^ (f.precision - 1) : Nat)) * 2 ^ unit :=
            mul_le_mul_of_nonneg_right hnear hpos.le
        _ < s * 2 ^ unit - n' * 2 ^ unit' := by linarith
        _ ≤ |(n' : ℚ) * 2 ^ unit' - s * 2 ^ unit| := by
            rw [abs_sub_comm]
            apply le_abs_self
    exact ⟨hstrict.le, fun htie => absurd htie hstrict.ne'⟩

/-- Half a unit beyond the largest magnitude. -/
def limit (f : Format) : ℚ := ((2 ^ f.precision : Nat) - 1 / 2) * 2 ^ f.most

/-- Rounding may carry up to the next power of two, and no further. -/
theorem roundCount_le (f : Format) (m : Nat) (e : Int) :
  f.roundCount m e ≤ 2 ^ f.precision
  := by
  have hlt := f.scaled_lt m e
  have hhalf := (abs_le.mp (f.nearestWhole_roundCount m e).le_half).2
  have hcount : (f.roundCount m e : ℚ) < ((2 ^ f.precision + 1 : Nat) : ℚ) := by
    rw [Nat.cast_add_one]
    linarith
  exact Nat.lt_succ_iff.mp (by exact_mod_cast hcount)

/-- Rounding overflows exactly when the unit is beyond the greatest, or is the greatest and the
count carries. -/
theorem round_eq_none_iff_count (hm : m ≠ 0) :
  f.round m e = none
    ↔ f.most < f.roundUnit m e ∨ f.most = f.roundUnit m e ∧ f.roundCount m e = 2 ^ f.precision
  := by
  rw [round_eq hm]
  split
  · rename_i hfull
    rw [ite_eq_left_iff]
    simp only [reduceCtorEq, imp_false, not_not, hfull, and_true]
    omega
  · rename_i hfull
    rw [ite_eq_left_iff]
    simp only [reduceCtorEq, imp_false, not_not, hfull, and_false, or_false]

/-- Rounding refuses a magnitude that is half a unit or more beyond the largest. -/
theorem round_eq_none_iff (hp : 0 < f.precision) (hf : f.least ≤ f.most) :
  f.round m e = none ↔ f.limit ≤ m * 2 ^ e
  := by
  have hpow : (1 : ℚ) ≤ (2 ^ f.precision : Nat) := by exact_mod_cast Nat.one_le_two_pow
  have hmost := two_zpow_pos f.most
  by_cases hm : m = 0
  · subst hm
    have hpos : 0 < f.limit := mul_pos (by linarith) hmost
    simp [round_zero, hpos]
  rw [round_eq_none_iff_count hm, ← scaled_mul_unit m e (f.roundUnit m e), limit]
  have hnear := f.nearestWhole_roundCount m e
  have hlt := f.scaled_lt m e
  have hle := f.roundCount_le m e
  have hs := least_or_le_scaled hp hm e
  generalize f.roundUnit m e = unit at *
  generalize (m : ℚ) * 2 ^ (e - unit) = s at *
  generalize f.roundCount m e = n at *
  obtain ⟨hlow, hhigh⟩ := abs_le.mp hnear.le_half
  obtain hunit | rfl | hunit := lt_trichotomy unit f.most
  · -- The unit is smaller, so even a full number of units is below the limit.
    have hbelow : s * 2 ^ unit < ((2 ^ f.precision : Nat) - 1 / 2) * 2 ^ f.most := by
      calc s * 2 ^ unit < (2 ^ f.precision : Nat) * 2 ^ unit :=
            mul_lt_mul_of_pos_right hlt (two_zpow_pos _)
        _ ≤ (2 ^ f.precision : Nat) * 2 ^ (f.most - 1) := by
            apply mul_le_mul_of_nonneg_left _ (Nat.cast_nonneg _)
            exact zpow_le_zpow_right₀ one_le_two (by omega)
        _ = (2 ^ f.precision : Nat) / 2 * 2 ^ f.most := by
            rw [zpow_sub_one₀ two_ne_zero]
            ring
        _ ≤ ((2 ^ f.precision : Nat) - 1 / 2) * 2 ^ f.most :=
            mul_le_mul_of_nonneg_right (by linarith) hmost.le
    constructor
    · rintro (h | ⟨h, -⟩) <;> omega
    · intro h
      exact absurd h hbelow.not_ge
  · rw [mul_le_mul_iff_left₀ hmost]
    simp only [lt_irrefl, false_or, true_and]
    constructor
    · rintro rfl
      linarith
    · -- A tie below the limit would leave the largest number of units, which is odd.
      intro hlimit
      by_contra hne
      have hn : n + 1 ≤ 2 ^ f.precision := by omega
      have hcast : (n : ℚ) + 1 ≤ (2 ^ f.precision : Nat) := by exact_mod_cast hn
      have htie : |(n : ℚ) - s| = 1 / 2 := by
        rw [abs_sub_comm, abs_of_nonneg (by linarith)]
        linarith
      have hlast : n + 1 = 2 ^ f.precision := by
        have : (n : ℚ) + 1 = (2 ^ f.precision : Nat) := by linarith
        exact_mod_cast this
      have heven : Even (2 ^ f.precision) := (Nat.even_pow' hp.ne').mpr even_two
      rw [← hlast] at heven
      exact Nat.even_add_one.mp heven (hnear.even htie)
  · have hfull := hs.resolve_left (by omega)
    simp only [hunit, true_or, true_iff]
    calc (((2 ^ f.precision : Nat) : ℚ) - 1 / 2) * 2 ^ f.most
        ≤ (2 ^ f.precision : Nat) * 2 ^ f.most :=
          mul_le_mul_of_nonneg_right (by linarith) hmost.le
      _ = (2 ^ (f.precision - 1) : Nat) * 2 ^ (f.most + 1) := by
          rw [two_pow_precision hp, zpow_add_one₀ two_ne_zero]
          push_cast
          ring
      _ ≤ s * 2 ^ unit := by
          apply mul_le_mul hfull _ (two_zpow_pos _).le (le_trans (Nat.cast_nonneg _) hfull)
          exact zpow_le_zpow_right₀ one_le_two hunit

/-- The magnitude that rounding gives is a nearest one of the format, and has an even number of
units if another one is as near. -/
theorem nearest_of_round (hp : 2 ≤ f.precision) (hf : f.least ≤ f.most)
    (h : f.round m e = some (n, unit)) :
  Canonical f n unit ∧ ∀ {n' : Nat} {unit' : Int}, Canonical f n' unit' →
    |(n : ℚ) * 2 ^ unit - m * 2 ^ e| ≤ |(n' : ℚ) * 2 ^ unit' - m * 2 ^ e|
      ∧ (|(n' : ℚ) * 2 ^ unit' - m * 2 ^ e| = |(n : ℚ) * 2 ^ unit - m * 2 ^ e| →
        (n' : ℚ) * 2 ^ unit' ≠ n * 2 ^ unit → Even n)
  := by
  by_cases hm : m = 0
  · subst hm
    obtain ⟨rfl, rfl⟩ := Prod.mk.inj (Option.some.inj h)
    refine ⟨canonical_zero hf, fun _ => ⟨?_, fun _ _ => ⟨0, rfl⟩⟩⟩
    rw [Nat.cast_zero, zero_mul, zero_mul, sub_self, abs_zero]
    apply abs_nonneg
  have hs := least_or_le_scaled (by omega : 0 < f.precision) hm e
  have hnear := f.nearestWhole_roundCount m e
  have hcount := f.roundCount_le m e
  have hleast : f.least ≤ f.roundUnit m e := le_max_left _ _
  have hbest {n' : Nat} {unit' : Int} (hc : Canonical f n' unit') :=
    hc.nearest_le (by omega) hnear hs
  rw [round_eq hm] at h
  simp only [scaled_mul_unit] at hbest
  split at h
  · -- The same magnitude in the next larger unit.
    rename_i hfull
    split at h
    · cases h
    rename_i hmost
    obtain ⟨rfl, rfl⟩ := Prod.mk.inj (Option.some.inj h)
    have hsame : ((2 ^ (f.precision - 1) : Nat) : ℚ) * 2 ^ (f.roundUnit m e + 1)
        = f.roundCount m e * 2 ^ f.roundUnit m e := by
      rw [hfull, two_pow_precision (by omega), zpow_add_one₀ two_ne_zero]
      push_cast
      ring
    rw [hsame]
    refine ⟨⟨?_, by omega, by omega, .inl le_rfl⟩, fun hc => ⟨(hbest hc).1, fun _ _ => ?_⟩⟩
    · exact Nat.pow_lt_pow_right one_lt_two (by omega)
    · exact (Nat.even_pow' (by omega)).mpr even_two
  · rename_i hfull
    split at h
    · cases h
    rename_i hmost
    obtain ⟨rfl, rfl⟩ := Prod.mk.inj (Option.some.inj h)
    refine ⟨⟨by omega, hleast, by omega, ?_⟩, hbest⟩
    obtain hunit | hle := hs
    · exact .inr hunit
    · -- The nearest whole number is not below a whole number that the magnitude is not below.
      left
      by_contra hlt
      have hlt' : (f.roundCount m e : ℚ) + 1 ≤ (2 ^ (f.precision - 1) : Nat) := by
        exact_mod_cast Nat.lt_of_not_le hlt
      have hhalf := (abs_le.mp hnear.le_half).1
      linarith

/-! ### Signs and bit patterns -/

/-- The sign of a number whose sign bit is given. -/
def sign (negative : Bool) : ℚ := if negative then -1 else 1

/-- The number of a sign and the bit pattern of a finite number. -/
def value (f : Format) (negative : Bool) (pattern : Nat) : ℚ :=
  sign negative * ((f.unpack pattern).1 * 2 ^ (f.unpack pattern).2)

/-- A sign and a bit pattern of a finite number that is nearest to a number, and if another one is
as near the bit pattern is even. -/
structure Nearest (f : Format) (q : ℚ) (negative : Bool) (pattern : Nat) : Prop where
  finite : pattern < f.infinity
  le {negative' : Bool} {pattern' : Nat} (h : pattern' < f.infinity) :
    |f.value negative pattern - q| ≤ |f.value negative' pattern' - q|
  even {negative' : Bool} {pattern' : Nat} (h : pattern' < f.infinity)
    (htie : |f.value negative' pattern' - q| = |f.value negative pattern - q|)
    (hne : f.value negative' pattern' ≠ f.value negative pattern) : Even pattern

theorem abs_sign_mul (negative : Bool) (a : ℚ) :
  |sign negative * a| = |a|
  := by
  cases negative <;> simp [sign]

theorem abs_sign_mul_sub (negative : Bool) (v a : ℚ) :
  |sign negative * v - sign negative * a| = |v - a|
  := by
  rw [← mul_sub, abs_sign_mul]

/-- Numbers of opposite signs are as far apart as their magnitudes together. -/
theorem abs_sign_mul_sub_of_ne {negative negative' : Bool} (h : negative' ≠ negative) {v a : ℚ}
    (hv : 0 ≤ v) (ha : 0 ≤ a) :
  |sign negative' * v - sign negative * a| = v + a
  := by
  have hsign : sign negative' * v - sign negative * a = sign negative' * (v + a) := by
    cases negative <;> cases negative' <;> simp_all [sign]
    ring
  rw [hsign, abs_sign_mul, abs_of_nonneg (add_nonneg hv ha)]

/-- An even significand has an even pattern. -/
theorem even_pack (hp : 2 ≤ f.precision) (hn : Even n) :
  Even (f.pack n unit)
  := by
  have hpow : Even (2 ^ (f.precision - 1)) := (Nat.even_pow' (by omega)).mpr even_two
  exact (hpow.mul_left _).add hn

/-- Rounding a magnitude rounds the numbers with that magnitude. -/
theorem nearest_pack_of_round (hp : 2 ≤ f.precision) (hf : f.least ≤ f.most) (negative : Bool)
    (h : f.round m e = some (n, unit)) :
  f.Nearest (sign negative * (m * 2 ^ e)) negative (f.pack n unit)
  := by
  obtain ⟨hcanon, hbest⟩ := nearest_of_round hp hf h
  have hvalue : f.value negative (f.pack n unit) = sign negative * (n * 2 ^ unit) := by
    rw [value, hcanon.unpack_pack (by omega)]
  have hm : (0 : ℚ) ≤ m * 2 ^ e := mul_nonneg (Nat.cast_nonneg _) (two_zpow_pos _).le
  have hn : (0 : ℚ) ≤ n * 2 ^ unit := mul_nonneg (Nat.cast_nonneg _) (two_zpow_pos _).le
  have hzero := (hbest (canonical_zero hf)).1
  rw [Nat.cast_zero, zero_mul] at hzero
  refine ⟨hcanon.pack_lt (by omega), ?_, ?_⟩
  · intro negative' pattern' h'
    obtain ⟨hle, -⟩ := hbest (canonical_unpack (by omega) hf h')
    have hn' : (0 : ℚ) ≤ (f.unpack pattern').1 * 2 ^ (f.unpack pattern').2 :=
      mul_nonneg (Nat.cast_nonneg _) (two_zpow_pos _).le
    rw [hvalue, abs_sign_mul_sub]
    by_cases hsign : negative' = negative
    · subst hsign
      rwa [value, abs_sign_mul_sub]
    · rw [value, abs_sign_mul_sub_of_ne hsign hn' hm]
      exact le_trans hle (abs_sub_le_iff.mpr ⟨by linarith, by linarith⟩)
  · intro negative' pattern' h' htie hne
    obtain ⟨hle, heven⟩ := hbest (canonical_unpack (by omega) hf h')
    have hn' : (0 : ℚ) ≤ (f.unpack pattern').1 * 2 ^ (f.unpack pattern').2 :=
      mul_nonneg (Nat.cast_nonneg _) (two_zpow_pos _).le
    rw [hvalue, abs_sign_mul_sub] at htie
    rw [hvalue] at hne
    apply even_pack hp
    by_cases hsign : negative' = negative
    · subst hsign
      rw [value, abs_sign_mul_sub] at htie
      exact heven htie fun heq => hne (by rw [value, heq])
    · -- Zero is not nearer, so a number on the other side of zero is itself zero.
      rw [value, abs_sign_mul_sub_of_ne hsign hn' hm] at htie
      rw [zero_sub, abs_neg, abs_of_nonneg hm] at hzero
      have hzero' : ((f.unpack pattern').1 : ℚ) * 2 ^ (f.unpack pattern').2 = 0 := by linarith
      rw [value, hzero', mul_zero] at hne
      rw [hzero', zero_add] at htie
      apply heven
      · rw [hzero', zero_sub, abs_neg, abs_of_nonneg hm]
        exact htie
      · rw [hzero']
        exact fun heq => hne (by rw [← heq, mul_zero])

end Format

/-! ### Conversions -/

namespace Double

/-- The number that the bit pattern stands for, if it is finite. -/
def value (x : Double) : ℚ := Format.double.value x.negative x.pattern

theorem meaning_of_finite {x : Double} (h : x.pattern < Format.double.infinity) :
  x.meaning
    = .finite x.negative (Format.double.unpack x.pattern).1 (Format.double.unpack x.pattern).2
  := by
  rw [meaning, if_neg h.not_gt, if_neg h.ne]

/-- The magnitude of a double is its significand times its unit. -/
theorem abs_value (x : Double) :
  |x.value| = (Format.double.unpack x.pattern).1 * 2 ^ (Format.double.unpack x.pattern).2
  := by
  rw [value, Format.value, Format.abs_sign_mul, abs_of_nonneg]
  exact mul_nonneg (Nat.cast_nonneg _) (Format.two_zpow_pos _).le

/-- What a number of 64 bits is in the format of 32 bits, signs apart: the nearest number, an
infinity, or a quiet NaN with the first 22 bits of the payload. -/
inductive Narrows (x : Double) (y : Single) : Prop where
  | finite (hx : x.pattern < Format.double.infinity)
      (hy : Format.single.Nearest x.value y.negative y.pattern)
  | infinite (hx : x.pattern = Format.double.infinity) (hy : y.pattern = Format.single.infinity)
  | nan (hx : Format.double.infinity < x.pattern) (hy : Format.single.infinity < y.pattern)
      (hquiet : y.pattern.testBit 22 = true)
      (hpayload : ∀ i < 22, y.pattern.testBit i = x.pattern.testBit (i + 29))

theorem single_pack_lt {n : Nat} {unit : Int} (h : Format.Canonical .single n unit) :
  Format.single.pack n unit < 2 ^ 31
  := lt_trans (h.pack_lt (by decide)) (by decide)

/-- A double has no single exactly when it is finite and rounds beyond the largest one. -/
theorem toSingle?_eq_none_iff {x : Double} :
  x.toSingle? = none
    ↔ x.pattern < Format.double.infinity ∧ Format.single.limit ≤ |x.value|
  := by
  rw [toSingle?]
  obtain h | h | h := Nat.lt_trichotomy x.pattern Format.double.infinity
  · rw [meaning_of_finite h, abs_value]
    simp only [Option.map_eq_none_iff, h, true_and]
    exact Format.round_eq_none_iff (by decide) (by decide)
  · simp [meaning, h]
  · simp [meaning, h, h.not_gt]

/-- The bits of a quiet NaN. -/
theorem testBit_nan (payload : Nat) :
  (Format.single.infinity + 2 ^ 22 + payload % 2 ^ 22).testBit 22 = true
    ∧ ∀ i < 22, (Format.single.infinity + 2 ^ 22 + payload % 2 ^ 22).testBit i = payload.testBit i
  := by
  have hlt : payload % 2 ^ 22 < 2 ^ 22 := Nat.mod_lt _ (by decide)
  have hbits : Format.single.infinity + 2 ^ 22 + payload % 2 ^ 22
      = 2 ^ 22 * 511 + payload % 2 ^ 22 := by
    change 255 * 2 ^ 23 + 2 ^ 22 + payload % 2 ^ 22 = 2 ^ 22 * 511 + payload % 2 ^ 22
    omega
  rw [hbits]
  constructor
  · rw [Nat.testBit_two_pow_mul_add _ hlt]
    rfl
  · intro i hi
    rw [Nat.testBit_two_pow_mul_add _ hlt, if_pos hi, Nat.testBit_mod_two_pow, decide_eq_true hi,
      Bool.true_and]

/-- Narrowing keeps the sign and gives the nearest single. -/
theorem narrows_of_toSingle? {x : Double} {y : Single} (h : x.toSingle? = some y) :
  y.negative = x.negative ∧ x.Narrows y
  := by
  obtain hx | hx | hx := Nat.lt_trichotomy x.pattern Format.double.infinity
  · rw [toSingle?, meaning_of_finite hx] at h
    obtain ⟨⟨n, unit⟩, hround, rfl⟩ := Option.map_eq_some_iff.mp h
    have hnear := Format.nearest_pack_of_round (by decide) (by decide) x.negative hround
    have hlt := single_pack_lt (Format.nearest_of_round (by decide) (by decide) hround).1
    refine ⟨Single.negative_ofPattern _ hlt, .finite hx ?_⟩
    rw [Single.negative_ofPattern _ hlt, Single.pattern_ofPattern _ hlt]
    exact hnear
  · have hden : x.meaning = .infinite x.negative := by
      rw [meaning, if_neg hx.not_gt, if_pos hx]
    rw [toSingle?, hden] at h
    obtain rfl := Option.some.inj h
    refine ⟨Single.negative_ofPattern _ (by decide), .infinite hx ?_⟩
    exact Single.pattern_ofPattern _ (by decide)
  · have hden : x.meaning = .nan := by rw [meaning, if_pos hx]
    rw [toSingle?, hden] at h
    obtain rfl := Option.some.inj h
    obtain ⟨hquiet, hpayload⟩ := testBit_nan (x.pattern % 2 ^ 52 / 2 ^ 29)
    have hlt : Format.single.infinity + 2 ^ 22 + x.pattern % 2 ^ 52 / 2 ^ 29 % 2 ^ 22 < 2 ^ 31 := by
      change 255 * 2 ^ 23 + 2 ^ 22 + x.pattern % 2 ^ 52 / 2 ^ 29 % 2 ^ 22 < 2 ^ 31
      omega
    refine ⟨Single.negative_ofPattern _ hlt, .nan hx ?_ ?_ ?_⟩
    all_goals rw [Single.pattern_ofPattern _ hlt]
    · omega
    · exact hquiet
    · intro i hi
      rw [hpayload i hi, Nat.testBit_div_two_pow, Nat.testBit_mod_two_pow,
        decide_eq_true (by omega), Bool.true_and]

/-- Whole numbers are rounded to the format of 64 bits. -/
theorem ofInt?_eq_none_iff {n : Int} :
  ofInt? n = none ↔ Format.double.limit ≤ |(n : ℚ)|
  := by
  rw [ofInt?, Option.map_eq_none_iff, Format.round_eq_none_iff (by decide) (by decide), zpow_zero,
    mul_one, Nat.cast_natAbs, Int.cast_abs]

/-- An integer is converted to the nearest double of its sign. -/
theorem nearest_of_ofInt? {n : Int} {x : Double} (h : ofInt? n = some x) :
  x.negative = decide (n < 0) ∧ Format.double.Nearest n x.negative x.pattern
  := by
  obtain ⟨⟨m, unit⟩, hround, rfl⟩ := Option.map_eq_some_iff.mp h
  have hnear := Format.nearest_pack_of_round (by decide) (by decide) (decide (n < 0)) hround
  have hcanon := (Format.nearest_of_round (by decide) (by decide) hround).1
  have hlt : Format.double.pack m unit < 2 ^ 63 :=
    lt_trans (hcanon.pack_lt (by decide)) (by decide)
  have hn : Format.sign (decide (n < 0)) * (n.natAbs * 2 ^ (0 : Int)) = n := by
    rw [zpow_zero, mul_one, Nat.cast_natAbs, Int.cast_abs, Format.sign]
    by_cases hneg : n < 0
    · rw [decide_eq_true hneg, if_pos rfl, abs_of_neg (by exact_mod_cast hneg)]
      ring
    · rw [decide_eq_false hneg, if_neg Bool.false_ne_true,
        abs_of_nonneg (by exact_mod_cast not_lt.mp hneg), one_mul]
  rw [hn] at hnear
  rw [negative_ofPattern _ hlt, pattern_ofPattern _ hlt]
  exact ⟨rfl, hnear⟩

/-- A double that means a finite number has its sign, significand and unit. -/
theorem eq_of_meaning {x : Double} {negative : Bool} {n : Nat} {unit : Int}
    (h : x.meaning = .finite negative n unit) :
  x.pattern < Format.double.infinity ∧ x.negative = negative
    ∧ Format.double.unpack x.pattern = (n, unit)
  := by
  obtain hx | hx | hx := Nat.lt_trichotomy x.pattern Format.double.infinity
  · rw [meaning_of_finite hx] at h
    obtain ⟨rfl, rfl, rfl⟩ := Meaning.finite.inj h
    exact ⟨hx, rfl, rfl⟩
  · rw [meaning, if_neg hx.not_gt, if_pos hx] at h
    cases h
  · rw [meaning, if_pos hx] at h
    cases h

/-- What a number of 32 bits is in the format of 64 bits, signs apart: the same number, an infinity,
or a quiet NaN with the same payload. -/
inductive Widens (x : Single) (y : Double) : Prop where
  | finite (hx : x.pattern < Format.single.infinity) (hy : y.pattern < Format.double.infinity)
      (hvalue : y.value = Format.single.value x.negative x.pattern)
  | infinite (hx : x.pattern = Format.single.infinity) (hy : y.pattern = Format.double.infinity)
  | nan (hx : Format.single.infinity < x.pattern) (hy : Format.double.infinity < y.pattern)
      (hquiet : y.pattern.testBit 51 = true)
      (hpayload : ∀ i < 22, y.pattern.testBit (i + 29) = x.pattern.testBit i)

/-- A finite number of 32 bits denotes the same number in 64 bits. -/
theorem exists_meaning_ofSingle_eq {x : Single} (h : x.pattern < Format.single.infinity) :
  ∃ (n : Nat) (unit : Int), Double.meaning (ofSingle x) = .finite x.negative n unit
    ∧ (n : ℚ) * 2 ^ unit
      = (Format.single.unpack x.pattern).1 * 2 ^ (Format.single.unpack x.pattern).2
  := by
  by_cases hzero : (Format.single.unpack x.pattern).1 = 0
  · refine ⟨0, Format.double.least, ?_, by rw [hzero, Nat.cast_zero, zero_mul, zero_mul]⟩
    rw [ofSingle, if_neg h.not_gt, if_neg h.ne]
    simp only [hzero, Format.round_zero]
    exact meaning_ofPattern_pack _ (Format.canonical_zero (by decide))
  · obtain ⟨k, hk⟩ := exists_meaning_ofSingle h hzero
    refine ⟨_, _, hk, ?_⟩
    rw [Nat.cast_mul, ← Format.two_zpow_natCast, mul_assoc, ← zpow_add₀ two_ne_zero,
      add_sub_cancel]

/-- Widening keeps the sign and the value. -/
theorem widens_ofSingle (x : Single) :
  (ofSingle x).negative = x.negative ∧ Widens x (ofSingle x)
  := by
  obtain hx | hx | hx := Nat.lt_trichotomy x.pattern Format.single.infinity
  · obtain ⟨n, unit, hden, hsame⟩ := exists_meaning_ofSingle_eq hx
    obtain ⟨hfinite, hnegative, hunpack⟩ := eq_of_meaning hden
    refine ⟨hnegative, .finite hx hfinite ?_⟩
    rw [value, Format.value, Format.value, hunpack, hnegative, hsame]
  · have hinfinite : ofSingle x = ofPattern x.negative Format.double.infinity := by
      rw [ofSingle, if_neg hx.not_gt, if_pos hx]
    rw [hinfinite]
    refine ⟨negative_ofPattern _ (by decide), .infinite hx ?_⟩
    exact pattern_ofPattern _ (by decide)
  · obtain ⟨hnegative, hpattern⟩ := ofSingle_of_nan hx
    have hlt : x.pattern % 2 ^ 22 < 2 ^ 22 := Nat.mod_lt _ (by decide)
    have hbits : Format.double.infinity + 2 ^ 51 + x.pattern % 2 ^ 22 * 2 ^ 29
        = 2 ^ 51 * 4095 + x.pattern % 2 ^ 22 * 2 ^ 29 := by
      rw [infinity_double]
      omega
    refine ⟨hnegative, .nan hx ?_ ?_ ?_⟩
    all_goals rw [hpattern]
    · omega
    · rw [hbits, Nat.testBit_two_pow_mul_add _ (by omega)]
      rfl
    · intro i hi
      rw [hbits, Nat.testBit_two_pow_mul_add _ (by omega), if_pos (by omega),
        Nat.testBit_mul_two_pow, Nat.testBit_mod_two_pow]
      simp [hi]

end Double

end ActionBlock
